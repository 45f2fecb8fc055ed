import Sylar.Proofs.HttpConnectionPool

/-! When the limits of a pool are kept. `m_createTime` is never set, so that both comparisons with
the clock are about the clock alone, and nothing looks at `m_maxSize`. -/

namespace Sylar

open Lib

namespace HttpConnectionPool

/-- Made less than the alive time before `now_ms`. -/
def Young (pool : HttpConnectionPool) (conn : HttpConnection) (now_ms : UInt64) : Prop :=
  now_ms.toNat < conn.made.toNat + pool.m_maxAliveTime.toNat

namespace Shared

/-- The connections that were made and not deleted. -/
def live (s : Shared) : ℕ := (List.range s.ptrs.length).countP fun ptr => ptr ∉ s.deleted

def isConnected (s : Shared) (ptr : ℕ) : Bool := (look s.ptrs ptr).any HttpConnection.connected

end Shared

/-- What a turn does is within the limits: a connection that `getConnection` comes to hand out is
connected and young, and a released one that is young and may have more requests is kept. -/
def FineTurn (pool : HttpConnectionPool) (s : Shared) (w : World) (t : CallTurn) : Instr → Prop
  | .popValid now_ms => ∀ ptr, .handOut ptr ∈ t.next →
      ∃ conn, look s.ptrs ptr = some conn ∧ conn.connected = true ∧ Young pool conn now_ms
  | .connect => ∀ ptr, .incTotal ptr ∈ t.next →
      ∃ conn, look t.shared.ptrs ptr = some conn ∧ conn.connected = true ∧ Young pool conn w.now_ms
  | .check ptr => ∀ conn, look s.ptrs ptr = some conn → Young pool conn w.now_ms →
      conn.m_request < pool.m_maxRequest.toUInt64 → .pushBack ptr ∈ t.next
  | _ => True

def Fine (pool : HttpConnectionPool) (f : Calls) : Move → Prop
  | .turn k w => ∀ i rest t, look f.threads k = some ⟨(), i :: rest⟩ →
      exec pool f.shared k () i w = .ok t → FineTurn pool f.shared w t i
  | _ => True

/-- When it is. The clock that decides over an idle connection is past the alive time, and the first
connected one is young; a new one is young if there is an alive time at all; a released one that is
young and may have more requests is connected, and the clock is past the alive time. -/
def SuitsTurn (pool : HttpConnectionPool) (s : Shared) (w : World) : Instr → Prop
  | .popValid now_ms => pool.m_maxAliveTime.toUInt64 ≤ now_ms → ∀ ptr conn,
      s.m_conns.find? s.isConnected = some ptr → look s.ptrs ptr = some conn → Young pool conn now_ms
  | .connect => w.reach = .connected → 0 < pool.m_maxAliveTime.toNat
  | .check ptr => ∀ conn, look s.ptrs ptr = some conn → Young pool conn w.now_ms →
      conn.m_request < pool.m_maxRequest.toUInt64 →
      conn.connected = true ∧ pool.m_maxAliveTime.toUInt64 < w.now_ms
  | _ => True

/-- There is room for one more connection where one is made. -/
def RoomTurn (pool : HttpConnectionPool) (s : Shared) (w : World) : Instr → Prop
  | .connect => w.reach = .connected → s.live < pool.m_maxSize.toNat
  | _ => True

def Suits (pool : HttpConnectionPool) (f : Calls) : Move → Prop
  | .turn k w => ∀ i rest, look f.threads k = some ⟨(), i :: rest⟩ → SuitsTurn pool f.shared w i
  | _ => True

def Room (pool : HttpConnectionPool) (f : Calls) : Move → Prop
  | .turn k w => ∀ i rest, look f.threads k = some ⟨(), i :: rest⟩ → RoomTurn pool f.shared w i
  | _ => True

section Turns

variable {pool : HttpConnectionPool} {s : Shared} {w : World} {k : ℕ} {i : Instr} {t : CallTurn}

def Unset (s : Shared) : Prop := ∀ ptr conn, look s.ptrs ptr = some conn → conn.m_createTime = 0

theorem Unset.modify (h : Unset s) (ptr : ℕ) {g : HttpConnection → HttpConnection}
    (hg : ∀ conn, (g conn).m_createTime = conn.m_createTime) : Unset (s.modify ptr g) := by
  intro c conn hlook
  change look (s.ptrs.modify ptr g) c = some conn at hlook
  rw [look_modify] at hlook
  split at hlook
  · obtain ⟨x, hx, rfl⟩ := Option.map_eq_some_iff.mp hlook
    rw [hg]
    exact h c x hx
  · exact h c conn hlook

theorem Unset.exec (h : Unset s) (hexec : exec pool s k () i w = .ok t) : Unset t.shared := by
  cases i with
  | popValid now_ms =>
    obtain ⟨r, -, hexec⟩ := ok_of_bind hexec
    cases hexec
    exact h
  | connect =>
    cases w with
    | mk now_ms reach =>
      cases reach with
      | connected =>
        cases hexec
        intro c conn hlook
        rcases look_append_cases hlook with ⟨-, rfl⟩ | hold
        · rfl
        · exact h c conn hold
      | _ =>
        cases hexec
        exact h
  | incRequest ptr =>
    obtain ⟨conn, -, hexec⟩ := ok_of_bind hexec
    cases hexec
    exact h.modify ptr fun _ => rfl
  | check ptr =>
    obtain ⟨conn, -, hexec⟩ := ok_of_bind hexec
    cases hexec
    exact h
  | _ =>
    cases hexec
    exact h

theorem popLoop_ptr (h : Unset s) {now_ms : UInt64} {m_conns : List ℕ} :
    ∀ {r : List ℕ × Option ℕ × List ℕ}, s.popLoop pool now_ms m_conns = .ok r →
      r.2.1 = if pool.m_maxAliveTime.toUInt64 ≤ now_ms then m_conns.find? s.isConnected else none := by
  induction m_conns with
  | nil =>
    intro r hr
    cases hr
    split <;> rfl
  | cons c m_conns ih =>
    intro r hr
    obtain ⟨conn, hconn, hr⟩ := ok_of_bind hr
    obtain ⟨-, hlook⟩ := deref_ok hconn
    have hconnected : s.isConnected c = conn.connected := by rw [Shared.isConnected, hlook]; rfl
    rw [h c conn hlook, UInt64.zero_add] at hr
    split at hr
    · next hclosed =>
      obtain ⟨r', hr', heq⟩ := ok_of_bind hr
      cases heq
      rw [ih hr', List.find?_cons_of_neg (by simpa [hconnected] using hclosed)]
    · next hopen =>
      split at hr
      · next hpast =>
        obtain ⟨r', hr', heq⟩ := ok_of_bind hr
        cases heq
        rw [ih hr', if_neg (UInt64.not_le.mpr hpast), if_neg (UInt64.not_le.mpr hpast)]
      · next hpast =>
        cases hr
        rw [if_pos (UInt64.not_lt.mp hpast), List.find?_cons_of_pos (by simpa [hconnected] using hopen)]

theorem handOut_mem_iff (h : Unset s) {now_ms : UInt64}
    (hexec : exec pool s k () (.popValid now_ms) w = .ok t) (ptr : ℕ) : .handOut ptr ∈ t.next ↔
      pool.m_maxAliveTime.toUInt64 ≤ now_ms ∧ s.m_conns.find? s.isConnected = some ptr := by
  obtain ⟨⟨invalid_conns, taken, rest⟩, hloop, hexec⟩ := ok_of_bind hexec
  have htaken := popLoop_ptr h hloop
  cases hexec
  dsimp only at htaken
  refine Iff.trans (b := taken = some ptr) ?_ ?_
  · cases taken with
    | none => simp [Turn.only]
    | some c => simp [Turn.only, eq_comm]
  · rw [htaken]
    split
    · next hle => exact (and_iff_right hle).symm
    · next hle => simp [hle]

theorem isConnected_of_find {ptr : ℕ} (h : s.m_conns.find? s.isConnected = some ptr) :
    ∃ conn, look s.ptrs ptr = some conn ∧ conn.connected = true := by
  have hconn := List.find?_some h
  rw [Shared.isConnected, Option.any_eq_true] at hconn
  exact hconn

theorem fineTurn_iff (h : Unset s) (hexec : exec pool s k () i w = .ok t) :
    FineTurn pool s w t i ↔ SuitsTurn pool s w i := by
  cases i with
  | popValid now_ms =>
    have hmem := handOut_mem_iff h hexec
    constructor
    · intro hfine hle ptr conn hfind hlook
      obtain ⟨conn', hlook', -, hyoung⟩ := hfine ptr ((hmem ptr).mpr ⟨hle, hfind⟩)
      cases hlook.symm.trans hlook'
      exact hyoung
    · intro hsuits ptr hptr
      obtain ⟨hle, hfind⟩ := (hmem ptr).mp hptr
      obtain ⟨conn, hlook, hconn⟩ := isConnected_of_find hfind
      exact ⟨conn, hlook, hconn, hsuits hle ptr conn hfind hlook⟩
  | connect =>
    cases w with
    | mk now_ms reach =>
      have hnone : reach ≠ .connected → t.next = [] := by
        intro hreach
        cases reach with
        | connected => exact absurd rfl hreach
        | _ =>
          cases hexec
          rfl
      by_cases hreach : reach = .connected
      · subst hreach
        cases hexec
        have hmade : look (s.make now_ms).ptrs s.ptrs.length = some ⟨0, 0, true, now_ms⟩ := by
          show look (s.ptrs ++ [_]) _ = _
          rw [look_append, Function.update_self]
        constructor
        · intro hfine _
          obtain ⟨conn, hlook, -, hyoung⟩ := hfine s.ptrs.length (List.mem_singleton_self _)
          cases hmade.symm.trans hlook
          change now_ms.toNat < now_ms.toNat + _ at hyoung
          omega
        · intro hsuits ptr hptr
          obtain rfl : ptr = s.ptrs.length := Instr.incTotal.inj (List.mem_singleton.mp hptr)
          refine ⟨_, hmade, rfl, ?_⟩
          have hpos := hsuits rfl
          change now_ms.toNat < now_ms.toNat + _
          omega
      · refine iff_of_true (fun ptr hptr => ?_) fun h => absurd h hreach
        rw [hnone hreach] at hptr
        exact absurd hptr List.not_mem_nil
  | check ptr =>
    obtain ⟨conn, hconn, hexec⟩ := ok_of_bind hexec
    obtain ⟨-, hlook⟩ := deref_ok hconn
    cases hexec
    rw [h ptr conn hlook, UInt64.zero_add]
    have hkept : conn.m_request < pool.m_maxRequest.toUInt64 → (.pushBack ptr ∈
        (if (!conn.connected) = true ∨ pool.m_maxAliveTime.toUInt64 ≥ w.now_ms ∨
          conn.m_request ≥ pool.m_maxRequest.toUInt64 then [Instr.delete ptr, .subTotal 1] else [.pushBack ptr]) ↔
        conn.connected = true ∧ pool.m_maxAliveTime.toUInt64 < w.now_ms) := by
      intro hlt
      rw [← UInt64.not_le]
      split
      · next hdel =>
        refine iff_of_false (by simp) ?_
        rintro ⟨hopen, hpast⟩
        rcases hdel with hclosed | hclock | hmax
        · rw [hopen] at hclosed
          exact absurd hclosed Bool.false_ne_true
        · exact hpast hclock
        · exact UInt64.not_le.mpr hlt hmax
      · next hkeep =>
        refine iff_of_true (List.mem_singleton_self _) ⟨?_, fun hclock => hkeep (.inr (.inl hclock))⟩
        by_contra hclosed
        exact hkeep (.inl (by simpa using hclosed))
    constructor
    · intro hfine conn' hlook' hyoung hlt
      cases hlook.symm.trans hlook'
      exact (hkept hlt).mp (hfine conn hlook hyoung hlt)
    · intro hsuits conn' hlook' hyoung hlt
      cases hlook.symm.trans hlook'
      exact (hkept hlt).mpr (hsuits conn hlook hyoung hlt)
  | _ => exact Iff.rfl

theorem live_make (h : ∀ ptr ∈ s.deleted, ptr < s.ptrs.length) (now_ms : UInt64) :
    (s.make now_ms).live = s.live + 1 := by
  have hlen : (s.make now_ms).ptrs.length = s.ptrs.length + 1 := by simp [Shared.make]
  have hnew : s.ptrs.length ∉ (s.make now_ms).deleted := fun hmem => lt_irrefl _ (h _ hmem)
  rw [Shared.live, hlen, List.range_succ, List.countP_append, List.countP_singleton,
    if_pos (decide_eq_true hnew)]
  rfl

theorem live_delete (ptr : ℕ) : { s with deleted := ptr :: s.deleted }.live ≤ s.live := by
  refine List.countP_mono_left fun c _ hc => ?_
  rw [decide_eq_true_eq] at hc ⊢
  exact fun hmem => hc (List.mem_cons_of_mem ptr hmem)

theorem live_modify (ptr : ℕ) (g : HttpConnection → HttpConnection) : (s.modify ptr g).live = s.live := by
  rw [Shared.live, length_modify]
  rfl

theorem live_exec (h : ∀ ptr ∈ s.deleted, ptr < s.ptrs.length) {m : ℕ} (hle : s.live ≤ m)
    (hexec : exec pool s k () i w = .ok t) :
    t.shared.live ≤ m ↔ (i = .connect → w.reach = .connected → s.live < m) := by
  cases i with
  | popValid now_ms =>
    obtain ⟨r, -, hexec⟩ := ok_of_bind hexec
    cases hexec
    exact iff_of_true hle nofun
  | connect =>
    cases w with
    | mk now_ms reach =>
      cases reach with
      | connected =>
        cases hexec
        change (s.make now_ms).live ≤ m ↔ _
        rw [live_make h]
        exact ⟨fun hlt _ _ => hlt, fun hlt => hlt rfl rfl⟩
      | _ =>
        cases hexec
        exact iff_of_true hle fun _ => nofun
  | incRequest ptr =>
    obtain ⟨conn, -, hexec⟩ := ok_of_bind hexec
    cases hexec
    refine iff_of_true ?_ nofun
    change (s.modify ptr _).live ≤ m
    rw [live_modify]
    exact hle
  | check ptr =>
    obtain ⟨conn, -, hexec⟩ := ok_of_bind hexec
    cases hexec
    exact iff_of_true hle nofun
  | delete ptr =>
    cases hexec
    exact iff_of_true ((live_delete ptr).trans hle) nofun
  | _ =>
    cases hexec
    exact iff_of_true hle nofun

theorem roomTurn_iff : RoomTurn pool s w i ↔
    (i = .connect → w.reach = .connected → s.live < pool.m_maxSize.toNat) := by
  cases i with
  | connect => exact ⟨fun h _ => h, fun h => h rfl⟩
  | _ => exact iff_of_true trivial nofun

end Turns

section Runs

variable {pool : HttpConnectionPool} {f f' : Calls}

theorem Inv.deleted_lt (h : Inv f) : ∀ ptr ∈ f.shared.deleted, ptr < f.shared.ptrs.length := by
  intro ptr hmem
  have hcount := List.count_pos_iff.mpr hmem
  have hplaced := f.shared.placed_eq ptr
  exact (h.lt_of_pos (by omega)).1

theorem step_still {m : Move} (hm : ∀ k w, m ≠ .turn k w) (hs : step pool f m = .ok f') :
    f'.shared.live = f.shared.live ∧ (Unset f.shared → Unset f'.shared) := by
  cases m with
  | getConnection =>
    cases hs
    exact ⟨rfl, id⟩
  | releasePtr ptr =>
    simp only [step] at hs
    split at hs
    · cases hs
      exact ⟨rfl, id⟩
    · cases hs
  | close ptr =>
    simp only [step] at hs
    split at hs
    · cases hs
    · cases hs
      exact ⟨live_modify ptr _, fun h => h.modify ptr fun _ => rfl⟩
  | turn k w => exact absurd rfl (hm k w)

theorem unset_step (h : Unset f.shared) {m : Move} (hs : step pool f m = .ok f') : Unset f'.shared := by
  cases m with
  | turn k w =>
    obtain ⟨role, i, rest, t, ⟨-, hexec⟩, rfl⟩ := Threads.run_ran hs
    exact h.exec hexec
  | _ => exact (step_still (by intros; nofun) hs).2 h

theorem live_step (h : Inv f) (hle : f.shared.live ≤ pool.m_maxSize.toNat) {m : Move}
    (hs : step pool f m = .ok f') :
    f'.shared.live ≤ pool.m_maxSize.toNat ↔ Room pool f m := by
  cases m with
  | turn k w =>
    obtain ⟨role, i, rest, t, ⟨hk, hexec⟩, rfl⟩ := Threads.run_ran hs
    obtain rfl : role = () := rfl
    refine (live_exec h.deleted_lt hle hexec).trans ⟨fun hroom i' rest' hk' => ?_, fun hroom => ?_⟩
    · cases hk.symm.trans hk'
      exact roomTurn_iff.mpr hroom
    · exact roomTurn_iff.mp (hroom i rest hk)
  | _ =>
    rw [(step_still (by intros; nofun) hs).1]
    exact iff_of_true hle trivial

theorem fine_step (h : Unset f.shared) {m : Move} (hs : step pool f m = .ok f') :
    Fine pool f m ↔ Suits pool f m := by
  cases m with
  | turn k w =>
    obtain ⟨role, i, rest, t, ⟨hk, hexec⟩, rfl⟩ := Threads.run_ran hs
    obtain rfl : role = () := rfl
    constructor
    · intro hfine i' rest' hk'
      cases hk.symm.trans hk'
      exact (fineTurn_iff h hexec).mp (hfine i rest t hk hexec)
    · intro hsuits i' rest' t' hk' hexec'
      cases hk.symm.trans hk'
      exact (fineTurn_iff h hexec').mpr (hsuits i rest hk)
  | _ => exact Iff.rfl

/-- A pool keeps its limits in a run exactly if the clock is past the alive time where it decides,
what it would hand out is young, what it would keep is connected, and there is room for what it
makes. -/
theorem limits_kept_iff (pool : HttpConnectionPool) (moves : List Move) :
    Along (step pool) (fun f => f.shared.live ≤ pool.m_maxSize.toNat) init moves ∧
        Each (step pool) (Fine pool) init moves ↔
      Each (step pool) (fun f m => Room pool f m ∧ Suits pool f m) init moves := by
  have hlive := along_iff_each Inv (fun f : Calls => f.shared.live ≤ pool.m_maxSize.toNat)
    (fun _ _ => True) (Room pool) (fun _ _ _ h hle _ hs => ⟨h.step hs, live_step h hle hs⟩) moves init .init
    (Nat.zero_le _) (each_true moves init)
  have hfine := each_iff_each (fun f : Calls => Unset f.shared) (Fine pool) (Suits pool)
    (fun _ _ _ h hs => ⟨unset_step h hs, fine_step h hs⟩) moves init (fun _ _ h => by cases h)
  rw [hlive, hfine]
  exact ⟨fun h => h.1.and h.2, fun h => ⟨h.mono fun _ _ => And.left, h.mono fun _ _ => And.right⟩⟩

/-- A pool for one connection makes two. -/
theorem not_limits_kept : ¬ ∀ pool moves,
    Along (step pool) (fun f => f.shared.live ≤ pool.m_maxSize.toNat) init moves ∧
      Each (step pool) (Fine pool) init moves := by
  intro hall
  let call : ℕ → List Move := fun k => .getConnection :: List.replicate 4 (.turn k ⟨1700000000000, .connected⟩)
  have h : 2 ≤ 1 := ((hall ⟨1, 30000, 5⟩ (call 0 ++ call 1)).1).last rfl
  omega

end Runs

end HttpConnectionPool

end Sylar
